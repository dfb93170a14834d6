import SymbolGraph.Proofs.Counterparts
import SymbolGraph.Record.Ledger

/-!
# Proofs — Record — records side by side

The records of two runs that are asked for different extras collect the same ranges in the same
partitions, under paired ids.  So they are given the same results and list the same items.

* `Table.Matches`: tables with the same keys in the same places.
* `Partition.Matches`, `Record.Matches`: what two runs collect.
* `Ledger.referenceResult_alike`, `Ledger.endPartition_alike`, `Ledger.close_alike`: writing
  records.
-/

namespace SymbolGraph

open SymbolGraph.Action Counterparts

/-! ### Tables -/

namespace Table

variable {κ α β : Type} {V V' : α → β → Prop} {t : Table κ α} {t' : Table κ β}

/-- Tables with the same keys in the same places, and values that go together. -/
def Matches (V : α → β → Prop) (t : Table κ α) (t' : Table κ β) : Prop :=
  List.Forall₂ (fun e e' => e'.1 = e.1 ∧ V e.2 e'.2) t.entries t'.entries

/-- Tables match also by a weaker comparison. -/
theorem Matches.imp (h : t.Matches V t') (himp : ∀ a b, V a b → V' a b) : t.Matches V' t' :=
  List.Forall₂.imp (fun _ _ he => ⟨he.1, himp _ _ he.2⟩) h

theorem matches_empty : (∅ : Table κ α).Matches V (∅ : Table κ β) := .nil

theorem Matches.size (h : t.Matches V t') : t'.size = t.size := h.length_eq.symm

/-- Tables that match have the same keys in the same order. -/
theorem Matches.keys (h : t.Matches V t') : t'.keys = t.keys := by
  have hkeys : List.Forall₂ Eq t'.keys t.keys := List.forall₂_map_left_iff.mpr
    (List.forall₂_map_right_iff.mpr (List.Forall₂.imp (fun _ _ he => he.1) h.flip))
  rwa [List.forall₂_eq_eq_eq] at hkeys

/-- The same keys are left on both sides. -/
theorem Matches.filter (h : t.Matches V t') (keep : κ → Bool) :
    (t.filter fun key _ => keep key).Matches V (t'.filter fun key _ => keep key) := by
  refine List.rel_filter (fun e e' he => ?_) h
  show keep e.1 = true ↔ keep e'.1 = true
  rw [he.1]

variable [DecidableEq κ]

/-- The values of one key match, or both tables have none. -/
theorem Matches.get? (h : t.Matches V t') (key : κ) : Option.Rel V (t.get? key) (t'.get? key) := by
  unfold Matches Table.get? at *
  generalize t.entries = entries at *
  generalize t'.entries = entries' at *
  induction h with
  | nil => exact .none
  | @cons e e' _ _ he _ ih =>
      rw [List.find?_cons, List.find?_cons, he.1]
      cases decide (e.1 = key) with
      | true => exact .some he.2
      | false => exact ih

/-- Both tables know a key, or neither does. -/
theorem Matches.contains (h : t.Matches V t') (key : κ) : t'.contains key = t.contains key := by
  unfold Table.contains
  have hget := h.get? key
  generalize t.get? key = found at hget
  generalize t'.get? key = found' at hget
  cases hget with
  | none => rfl
  | some => rfl

/-- Values that match may be put under one key. -/
theorem Matches.insert (h : t.Matches V t') {key : κ} {a : α} {b : β} (hab : V a b) :
    (t.insert key a).Matches V (t'.insert key b) := by
  unfold Table.insert
  rw [h.contains key]
  split
  · refine List.forall₂_map_left_iff.mpr (List.forall₂_map_right_iff.mpr
      (List.Forall₂.imp (fun e e' he => ?_) h))
    rw [he.1]
    split
    · exact ⟨rfl, hab⟩
    · exact he
  · exact List.rel_append h (.cons ⟨rfl, hab⟩ .nil)

end Table

/-! ### Slots -/

/-- Slots that are both cleared, or hold values that go together. -/
inductive Slot.Matches {α β : Type} (V : α → β → Prop) : Slot α → Slot β → Prop
  | live {a : α} {b : β} : V a b → Slot.Matches V (.live a) (.live b)
  | cleared : Slot.Matches V .cleared .cleared

/-- Slots match also by a weaker comparison of what is live. -/
theorem Slot.Matches.imp {α β : Type} {V V' : α → β → Prop} {a : Slot α} {b : Slot β}
    (h : a.Matches V b) (himp : ∀ x y, V x y → V' x y) : a.Matches V' b := by
  cases h with
  | live hab => exact .live (himp _ _ hab)
  | cleared => exact .cleared

/-! ### Partitions -/

variable {ρ ρ' : Pairing}

/-- References of one sort to ids that are paired. -/
inductive Reference.Matches (ρ : Pairing) : Reference → Reference → Prop
  | range {id id' : ElementId} : ρ id id' → Reference.Matches ρ (.range id) (.range id')
  | result {id id' : ElementId} : ρ id id' → Reference.Matches ρ (.result id) (.result id')

/-- References that match do so along every later pairing. -/
theorem Reference.Matches.later {r r' : Reference} (h : r.Matches ρ r') (hρ : ρ ≤ ρ') :
    r.Matches ρ' r' := by
  cases h with
  | range hid => exact .range (hρ _ _ hid)
  | result hid => exact .result (hρ _ _ hid)

/-- Partitions whose ranges are paired, role by role. -/
structure Partition.Matches (ρ : Pairing) (p p' : Partition) : Prop where
  document         : ρ p.document p'.document
  definitionRanges : List.Forall₂ ρ p.definitionRanges p'.definitionRanges
  declarations     : List.Forall₂ ρ p.declarations p'.declarations
  definitions      : List.Forall₂ ρ p.definitions p'.definitions
  references       : List.Forall₂ ρ p.references p'.references
  referenceResults : List.Forall₂ ρ p.referenceResults p'.referenceResults

namespace Partition

variable {p p' : Partition}

/-- Partitions that match do so along every later pairing. -/
theorem Matches.later (h : p.Matches ρ p') (hρ : ρ ≤ ρ') : p.Matches ρ' p' where
  document := hρ _ _ h.document
  definitionRanges := forall₂_later hρ h.definitionRanges
  declarations := forall₂_later hρ h.declarations
  definitions := forall₂_later hρ h.definitions
  references := forall₂_later hρ h.references
  referenceResults := forall₂_later hρ h.referenceResults

/-- One more pair at the end. -/
theorem forall₂_snoc {ids ids' : List ElementId} {id id' : ElementId}
    (hids : List.Forall₂ ρ ids ids') (hid : ρ id id') :
    List.Forall₂ ρ (ids ++ [id]) (ids' ++ [id']) :=
  List.rel_append hids (.cons hid .nil)

/-- Both partitions collect a definition, under ids that are paired. -/
theorem Matches.addDefinition (h : p.Matches ρ p') {range range' : ElementId}
    (hrange : ρ range range') (asReference : Bool) :
    (p.addDefinition range asReference).Matches ρ (p'.addDefinition range' asReference) := by
  cases asReference with
  | true => exact { h with
      definitionRanges := forall₂_snoc h.definitionRanges hrange
      definitions := forall₂_snoc h.definitions hrange }
  | false => exact { h with definitionRanges := forall₂_snoc h.definitionRanges hrange }

/-- Both partitions collect a reference, under ids that are paired. -/
theorem Matches.addReference (h : p.Matches ρ p') {reference reference' : Reference}
    (hreference : reference.Matches ρ reference') (role : ReferenceRole) :
    (p.addReference role reference).Matches ρ (p'.addReference role reference') := by
  cases hreference with
  | result hid => exact { h with referenceResults := forall₂_snoc h.referenceResults hid }
  | range hid =>
      cases role with
      | declarations => exact { h with declarations := forall₂_snoc h.declarations hid }
      | definitions => exact { h with definitions := forall₂_snoc h.definitions hid }
      | references => exact { h with references := forall₂_snoc h.references hid }

/-- The lists that are written go together. -/
theorem Matches.listed (h : p.Matches ρ p') :
    List.Forall₂ (fun e e' => List.Forall₂ ρ e.1 e'.1 ∧ e'.2 = e.2) p.listed p'.listed :=
  .cons ⟨h.declarations, rfl⟩ (.cons ⟨h.definitions, rfl⟩ (.cons ⟨h.references, rfl⟩
    (.cons ⟨h.referenceResults, rfl⟩ .nil)))

/-- Both partitions have references, or neither has. -/
theorem Matches.hasReferences (h : p.Matches ρ p') : p'.hasReferences = p.hasReferences := by
  have hlisted := h.listed
  unfold Partition.hasReferences
  generalize p.listed = lists at hlisted
  generalize p'.listed = lists' at hlisted
  induction hlisted with
  | nil => rfl
  | cons he _ ih =>
      rw [List.any_cons, List.any_cons, ih, isEmpty_eq_of_length he.1.length_eq.symm]

end Partition

/-! ### Records -/

/-- Records of one symbol in one state that have collected the same. -/
structure Record.Matches (ρ : Pairing) (r r' : Record) : Prop where
  key              : r'.key = r.key
  kind             : r'.kind = r.kind
  scope            : r'.scope = r.scope
  state            : r'.state = r.state
  resultSet        : Option.Rel (VertexRef.Matches ρ) r.resultSet r'.resultSet
  definitionResult : Option.Rel (VertexRef.Matches ρ) r.definitionResult r'.definitionResult
  referenceResult  : Option.Rel (VertexRef.Matches ρ) r.referenceResult r'.referenceResult
  definitionInfos  : r'.definitionInfos = r.definitionInfos
  partitions       : r.partitions.Matches (Slot.Matches (Partition.Matches ρ)) r'.partitions

namespace Record

variable {r r' : Record}

/-- Vertices that match do so along every later pairing. -/
theorem vertex_later {v v' : Option VertexRef} (h : Option.Rel (VertexRef.Matches ρ) v v')
    (hρ : ρ ≤ ρ') : Option.Rel (VertexRef.Matches ρ') v v' := by
  cases h with
  | none => exact .none
  | some hv => exact .some (hv.later hρ)

/-- Records that match do so along every later pairing. -/
theorem Matches.later (h : r.Matches ρ r') (hρ : ρ ≤ ρ') : r.Matches ρ' r' :=
  { h with
    resultSet := vertex_later h.resultSet hρ
    definitionResult := vertex_later h.definitionResult hρ
    referenceResult := vertex_later h.referenceResult hρ
    partitions := h.partitions.imp fun _ _ hslot => hslot.imp fun _ _ hp => hp.later hρ }

/-- The result sets are paired, or missing on both sides. -/
theorem Matches.begunResultSet (h : r.Matches ρ r') :
    Verdicts (VertexRef.Matches ρ) r.begunResultSet r'.begunResultSet := by
  have hhub := h.resultSet
  unfold Record.begunResultSet
  rw [h.key]
  generalize r.resultSet = hub at hhub
  generalize r'.resultSet = hub' at hhub
  cases hhub with
  | none => exact .error
  | some hv => exact .ok hv

/-- Both records are open, or both refuse alike. -/
theorem Matches.isOpen (h : r.Matches ρ r') : r'.isOpen = r.isOpen := by
  unfold Record.isOpen
  rw [h.state, h.kind, h.key]

/-- Both records note the same coordinates. -/
theorem Matches.addInfo (h : r.Matches ρ r') (info : DefinitionInfo) :
    (r.addInfo info).Matches ρ (r'.addInfo info) := by
  unfold Record.addInfo
  rw [h.kind, h.definitionInfos]
  split
  · exact { h with kind := rfl, definitionInfos := rfl }
  · exact h

/-- Partitions that match may be put in place. -/
theorem Matches.insert (h : r.Matches ρ r') {slot slot' : Slot Partition} {file : FileId}
    (hslot : slot.Matches (Partition.Matches ρ) slot') :
    Record.Matches ρ { r with partitions := r.partitions.insert file slot }
      { r' with partitions := r'.partitions.insert file slot' } :=
  { h with partitions := h.partitions.insert hslot }

end Record

/-! ### Writing records -/

namespace Ledger

variable {α β : Type} {V : Pairing → α → β → Prop}

instance : Counterparts Ledger where
  Agree ρ l l' := l.record.Matches ρ l'.record ∧ l.graph.Matches ρ l'.graph

/-- What two graphs do alike, their records do alike. -/
theorem emission_alike {act : Emission α} {act' : Emission β} (h : Alike ρ V act act') :
    Alike ρ V (liftM act : Writing α) (liftM act' : Writing β) :=
  h.onPart (fun _ _ _ _ hl => hl.2) fun _ _ _ _ _ _ hρ hl hg => ⟨hl.1.later hρ, hg⟩

theorem vertex_alike (v : Vertex) (hv : v.isExtra = false) :
    Alike ρ VertexRef.Matches (Graph.vertex v : Writing VertexRef)
      (Graph.vertex v : Writing VertexRef) :=
  emission_alike (Graph.vertex_alike v hv)

/-- A plain link between ids that are paired may be delivered. -/
theorem link_alike {kind : LinkKind} {source source' target target' : ElementId}
    (hkind : kind.isExtra = false) (hsource : ρ source source') (htarget : ρ target target') :
    Alike ρ Same (discard (Graph.link kind source target) : Writing Unit)
      (discard (Graph.link kind source' target') : Writing Unit) :=
  (emission_alike (Graph.link_alike hkind hsource htarget)).discard

/-- Both records list ids that are paired. -/
theorem item_alike {source source' : VertexRef} {targets targets' : List ElementId}
    {document document' : ElementId} {property : ItemProperty} (hsource : source.Matches ρ source')
    (htargets : List.Forall₂ ρ targets targets') (hdocument : ρ document document') :
    Alike ρ Same (discard (Graph.item source targets document property) : Writing Unit)
      (discard (Graph.item source' targets' document' property) : Writing Unit) :=
  (emission_alike (Graph.item_alike hsource htargets hdocument)).discard

/-- Both records may change, if they match after it. -/
theorem change_alike {f f' : Record → Record}
    (h : ∀ ρ₁ r r', ρ ≤ ρ₁ → Record.Matches ρ₁ r r' → (f r).Matches ρ₁ (f' r')) :
    Alike ρ Same (change f) (change f') :=
  alike_modify fun ρ₁ _ _ hρ hl => ⟨h ρ₁ _ _ hρ hl.1, hl.2⟩

theorem resultSet_alike : Alike ρ VertexRef.Matches resultSet resultSet :=
  alike_get.bind fun _ _ _ _ hl => alike_ofExcept fun _ hρ => (hl.1.later hρ).begunResultSet

/-- Both records open with a result set, under ids that are paired. -/
theorem emitResultSet_alike : Alike ρ VertexRef.Matches emitResultSet emitResultSet := by
  refine (vertex_alike _ rfl).bind fun ρ₁ v v' _ hv => (change_alike ?_).next fun _ => ?_
  · exact fun ρ₂ r r' hρ hr => { hr with resultSet := .some (hv.later hρ), state := rfl }
  · exact alike_pure fun _ hρ => hv.later hρ

/-- Both records begin. -/
theorem begin_alike : Alike ρ VertexRef.Matches begin begin := by
  refine alike_get.bind fun ρ₁ l l' _ hl => ?_
  dsimp only
  rw [hl.1.state, hl.1.key]
  exact alike_ite (fun _ => alike_throw.next fun _ => emitResultSet_alike) fun _ =>
    emitResultSet_alike

/-- A result is made and kept. -/
theorem newResult_alike {v : Vertex} {kind : LinkKind} {note : VertexRef → Record → Record}
    (hv : v.isExtra = false) (hkind : kind.isExtra = false)
    (hnote : ∀ ρ' result result' r r', VertexRef.Matches ρ' result result' →
      Record.Matches ρ' r r' → (note result r).Matches ρ' (note result' r')) :
    Alike ρ VertexRef.Matches (newResult v kind note) (newResult v kind note) := by
  refine resultSet_alike.bind fun ρ₁ hub hub' _ hhub => ?_
  refine (vertex_alike v hv).bind fun ρ₂ result result' hρ₂ hresult => ?_
  refine (link_alike hkind (hρ₂ _ _ hhub.id) hresult.id).next fun _ => ?_
  refine (change_alike fun ρ₃ r r' hρ₃ hr => ?_).next fun _ => ?_
  · exact hnote ρ₃ _ _ r r' (hresult.later hρ₃) hr
  · exact alike_pure fun _ hρ => hresult.later hρ

/-- Both records have a reference result, or deliver one. -/
theorem referenceResult_alike : Alike ρ VertexRef.Matches referenceResult referenceResult := by
  refine alike_get.bind fun ρ₁ l l' _ hl => ?_
  have hknown := hl.1.referenceResult
  generalize l.record.referenceResult = known at hknown
  generalize l'.record.referenceResult = known' at hknown
  cases hknown with
  | some hv => exact alike_pure fun _ hρ => hv.later hρ
  | none =>
      refine newResult_alike rfl rfl fun _ _ _ _ _ hv hr => ?_
      exact { hr with referenceResult := .some hv }

/-- Both records have a definition result, or deliver one. -/
theorem definitionResult_alike : Alike ρ VertexRef.Matches definitionResult definitionResult := by
  refine alike_get.bind fun ρ₁ l l' _ hl => ?_
  have hknown := hl.1.definitionResult
  generalize l.record.definitionResult = known at hknown
  generalize l'.record.definitionResult = known' at hknown
  cases hknown with
  | some hv => exact alike_pure fun _ hρ => hv.later hρ
  | none =>
      refine newResult_alike rfl rfl fun _ _ _ _ _ hv hr => ?_
      exact { hr with definitionResult := .some hv }

/-- The references of a partition. -/
theorem listReferences_alike {p p' : Partition} (h : p.Matches ρ p') :
    Alike ρ Same (listReferences p) (listReferences p') := by
  unfold listReferences
  rw [h.hasReferences]
  refine alike_ite (fun _ => ?_) fun _ => alike_same
  refine referenceResult_alike.bind fun ρ₁ v v' hρ hv => ?_
  refine Alike.forM (h.later hρ).listed ?_
  rintro ⟨ranges, property⟩ ⟨ranges', property'⟩ ⟨hranges, hproperty⟩
  cases hproperty
  unfold listEntry
  rw [isEmpty_eq_of_length hranges.length_eq.symm]
  exact alike_ite (fun _ => alike_same) fun _ => item_alike hv hranges (hρ _ _ h.document)

/-- Both partitions list what they collected, in the same order. -/
theorem flush_alike {p p' : Partition} (h : p.Matches ρ p') :
    Alike ρ Same (flush p) (flush p') := by
  unfold flush
  dsimp only
  rw [isEmpty_eq_of_length h.definitionRanges.length_eq.symm]
  refine alike_ite (fun _ => listReferences_alike h) fun _ => ?_
  refine definitionResult_alike.bind fun ρ₁ v v' hρ hv => ?_
  exact (item_alike hv (forall₂_later hρ h.definitionRanges) (hρ _ _ h.document)).next fun _ =>
    listReferences_alike (h.later hρ)

/-- **A partition ends.** -/
theorem endPartition_alike (file : FileId) :
    Alike ρ Same (endPartition file) (endPartition file) := by
  refine alike_get.bind fun ρ₁ l l' _ hl => ?_
  have hslot := hl.1.partitions.get? file
  generalize l.record.partitions.get? file = slot at hslot
  generalize l'.record.partitions.get? file = slot' at hslot
  cases hslot with
  | none => exact alike_same
  | some hslot =>
      cases hslot with
      | cleared => exact alike_same
      | live hp =>
          refine (change_alike fun _ _ _ _ hr => ?_).next fun _ => flush_alike hp
          exact hr.insert .cleared

/-- **A record is closed.** -/
theorem close_alike : Alike ρ Same close close := by
  refine alike_get.bind fun ρ₁ l l' _ hl => ?_
  dsimp only
  rw [hl.1.state, hl.1.partitions.keys]
  refine alike_ite (fun _ => alike_same) fun _ => ?_
  refine (Alike.forEach endPartition_alike).next fun _ => change_alike fun _ _ _ _ hr => ?_
  exact { hr with state := rfl, partitions := Table.matches_empty, definitionInfos := rfl }

end Ledger

end SymbolGraph
