import SymbolGraph.Proofs.Graph.Tallies
import SymbolGraph.Proofs.Record.Entries
import SymbolGraph.Proofs.Record.Scribing

/-!
# Proofs — Record — what a record lists, edge by edge

What a record received is kept in partitions and listed by `item` edges.  `Proofs.Record.Entries`
says that nothing of it is lost; here is in which order it is listed, how often, and by how many
edges.  A *heading* is what a list stands under: no property for the definitions, and one of the four
properties for the references.

* `itemsIn`: what the `item` edges of a result list for a document, edge by edge.
* `Ledger.Lists`: what writing a record adds to each of its lists, and that it adds to no others.
* `Ledger.Enters`: an action that ends well adds certain lists; `Ledger.Enters.bind` composes.
* `Ledger.flush_enters`: a partition is listed by one edge for each heading that has anything.
-/

namespace SymbolGraph

open SymbolGraph.Action

/-! ### Edges -/

/-- The targets of an `item` edge of this source, document and heading. -/
def Element.items? (source document : ElementId) (heading : Option ItemProperty) :
    Element → Option (List ElementId)
  | .edge _ (.item source' targets document' heading') =>
      if source' = source ∧ document' = document ∧ heading' = heading then some targets else none
  | _ => none

/-- What the `item` edges of a source list for a document under a heading, edge by edge. -/
def itemsIn (elements : List Element) (source document : ElementId)
    (heading : Option ItemProperty) : List (List ElementId) :=
  elements.filterMap (Element.items? source document heading)

/-- What is listed first comes first. -/
theorem itemsIn_append {earlier later : List Element} {source document : ElementId}
    {heading : Option ItemProperty} :
    itemsIn (earlier ++ later) source document heading
      = itemsIn earlier source document heading ++ itemsIn later source document heading :=
  List.filterMap_append

/-- Nothing is listed where no edge has this source, document and heading. -/
theorem mem_itemsIn {elements : List Element} {source document : ElementId}
    {targets : List ElementId} {heading : Option ItemProperty} :
    targets ∈ itemsIn elements source document heading ↔
      ∃ n, Element.edge n (.item source targets document heading) ∈ elements := by
  constructor
  · intro h
    obtain ⟨e, he, hitems⟩ := List.mem_filterMap.mp h
    unfold Element.items? at hitems
    split at hitems
    · split at hitems
      · rename_i hsame
        obtain ⟨rfl, rfl, rfl⟩ := hsame
        cases hitems
        exact ⟨_, he⟩
      · cases hitems
    · cases hitems
  · rintro ⟨n, hn⟩
    exact List.mem_filterMap.mpr ⟨_, hn, if_pos ⟨rfl, rfl, rfl⟩⟩

/-- Where there is no such edge nothing was listed. -/
theorem itemsIn_eq_nil {elements : List Element} {source document : ElementId}
    {heading : Option ItemProperty}
    (h : ∀ n targets, Element.edge n (.item source targets document heading) ∉ elements) :
    itemsIn elements source document heading = [] := by
  refine List.filterMap_eq_nil_iff.mpr fun e he => ?_
  cases e with
  | vertex n v => rfl
  | edge n e =>
      cases e with
      | item source' targets document' heading' =>
          have hne : ¬ (source' = source ∧ document' = document ∧ heading' = heading) := by
            intro hsame
            obtain ⟨rfl, rfl, rfl⟩ := hsame
            exact h n targets he
          simp [Element.items?, hne]
      | contains source' targets => rfl
      | link kind source' target => rfl

/-- What one edge lists; nothing is listed by no edge. -/
def batch (ids : List ElementId) : List (List ElementId) := if ids.isEmpty then [] else [ids]

@[simp] theorem batch_nil : batch [] = [] := rfl

/-- A list of ids is told from its batches. -/
theorem batch_inj {ids ids' : List ElementId} (h : batch ids = batch ids') : ids = ids' := by
  cases ids <;> cases ids' <;> simp_all [batch]

/-- What lists something, and for which document, has an id that was given out. -/
structure Graph.Dated (g : Graph) : Prop where
  memory : g.IsMemory
  items  : ∀ n source targets document heading,
    Element.edge n (.item source targets document heading) ∈ g.elements →
      source.value ≤ g.issued ∧ document.value ≤ g.issued

/-- More may be delivered, if what it lists refers to ids that were given out. -/
theorem Graph.Dated.delivers {g g' : Graph} {written : List Element} (h : g.Dated)
    (hd : g.Delivers written g')
    (hwritten : ∀ n source targets document heading,
      Element.edge n (.item source targets document heading) ∈ written →
        source.value ≤ g'.issued ∧ document.value ≤ g'.issued) : g'.Dated := by
  refine ⟨hd.memory, fun n source targets document heading hitem => ?_⟩
  rw [hd.elements] at hitem
  rcases List.mem_append.mp hitem with hitem | hitem
  · obtain ⟨hsource, hdocument⟩ := h.items n source targets document heading hitem
    exact ⟨Nat.le_trans hsource hd.issued, Nat.le_trans hdocument hd.issued⟩
  · exact hwritten n source targets document heading hitem

/-! ### Headings -/

/-- The label of what lists under a heading. -/
def resultLabel : Option ItemProperty → VertexLabel
  | none   => .definitionResult
  | some _ => .referenceResult

/-- What a partition holds under a heading. -/
def Partition.filed (p : Partition) : Option ItemProperty → List ElementId
  | none          => p.definitionRanges
  | some property => p.under property

namespace Record

/-- What lists for a record under a heading. -/
def resultOf (r : Record) : Option ItemProperty → Option VertexRef
  | none   => r.definitionResult
  | some _ => r.referenceResult

/-- What a record still holds for a file under a heading. -/
def held (r : Record) (file : FileId) (heading : Option ItemProperty) : List ElementId :=
  match r.partitions.get? file with
  | some (.live p) => p.filed heading
  | _              => []

/-- A partition that is live holds what was filed in it. -/
theorem held_of_live {r : Record} {file : FileId} {p : Partition}
    (h : r.partitions.get? file = some (.live p)) (heading : Option ItemProperty) :
    r.held file heading = p.filed heading := by
  simp [held, h]

/-- Without a live partition nothing is held. -/
theorem held_of_not_live {r : Record} {file : FileId}
    (h : ∀ p, r.partitions.get? file ≠ some (.live p)) (heading : Option ItemProperty) :
    r.held file heading = [] := by
  unfold held
  split
  · rename_i p hp
    exact absurd hp (h p)
  · rfl

/-- An element that writing this record may deliver: no document, and if something is listed, then by
its own result. -/
structure Signs (r : Record) (issued : Nat) (e : Element) : Prop where
  document : e.document? = none
  items    : ∀ n source targets document heading,
    e = .edge n (.item source targets document heading) →
      (∃ v, r.resultOf heading = some v ∧ v.id = source) ∧ document.value ≤ issued

end Record

/-- A handle that is still the same, or was set to a vertex of a new id. -/
def Renewed (issued : Nat) (old new : Option VertexRef) : Prop :=
  new = old ∨ old = none ∧ ∃ v, new = some v ∧ issued < v.id.value

/-- A handle that there is stays. -/
theorem Renewed.eq_some {issued : Nat} {new : Option VertexRef} {v : VertexRef}
    (h : Renewed issued (some v) new) : new = some v := by
  rcases h with h | ⟨h, -⟩
  · exact h
  · cases h

/-- A handle that is set in one of two steps is set in both together. -/
theorem Renewed.trans {issued issued' : Nat} {a b c : Option VertexRef} (hle : issued ≤ issued')
    (hab : Renewed issued a b) (hbc : Renewed issued' b c) : Renewed issued a c := by
  rcases hab with rfl | ⟨rfl, v, rfl, hv⟩
  · rcases hbc with rfl | ⟨rfl, v, rfl, hv⟩
    · exact .inl rfl
    · exact .inr ⟨rfl, v, rfl, by omega⟩
  · rw [hbc.eq_some]
    exact .inr ⟨rfl, v, rfl, hv⟩

namespace Ledger

/-! ### Writing a record -/

/-- Writing a record delivers nothing that concerns others. -/
structure Signs (l l' : Ledger) : Prop where
  delivers : ∃ written, l.graph.Delivers written l'.graph ∧
    ∀ e ∈ written, l'.record.Signs l'.graph.issued e
  results  : ∀ heading,
    Renewed l.graph.issued (l.record.resultOf heading) (l'.record.resultOf heading)

/-- The results of a record have the labels they should and ids that were given out. -/
def Labelled (l : Ledger) : Prop :=
  ∀ heading v, l.record.resultOf heading = some v →
    v.label = resultLabel heading ∧ v.id.value ≤ l.graph.issued

/-- What the results of a record list for a document under a heading, edge by edge. -/
def listed (l : Ledger) (document : ElementId) (heading : Option ItemProperty) :
    List (List ElementId) :=
  match l.record.resultOf heading with
  | some v => itemsIn l.graph.elements v.id document heading
  | none   => []

/-- With a result, what is listed is what its edges list. -/
theorem listed_of_some {l : Ledger} {heading : Option ItemProperty} {v : VertexRef}
    (h : l.record.resultOf heading = some v) (document : ElementId) :
    l.listed document heading = itemsIn l.graph.elements v.id document heading := by
  simp [listed, h]

/-- Without a result nothing is listed. -/
theorem listed_of_none {l : Ledger} {heading : Option ItemProperty}
    (h : l.record.resultOf heading = none) (document : ElementId) :
    l.listed document heading = [] := by
  simp [listed, h]

variable {l l' l'' : Ledger}

/-- Writing a record gives out ids and takes none back. -/
theorem Signs.issued (h : l.Signs l') : l.graph.issued ≤ l'.graph.issued := by
  obtain ⟨written, hd, -⟩ := h.delivers
  exact hd.issued

/-- Changing what is no result of a record. -/
theorem Signs.of_record (hm : l.graph.IsMemory) {r : Record}
    (hr : ∀ heading, r.resultOf heading = l.record.resultOf heading) : l.Signs ⟨r, l.graph⟩ :=
  ⟨⟨[], .refl hm, by simp⟩, fun heading => .inl (hr heading)⟩

/-- What is written in two steps concerns no others either. -/
theorem Signs.trans (h : l.Signs l') (h' : l'.Signs l'') : l.Signs l'' := by
  obtain ⟨written, hd, hs⟩ := h.delivers
  obtain ⟨more, hd', hs'⟩ := h'.delivers
  refine ⟨⟨written ++ more, hd.trans hd', fun e he => ?_⟩,
    fun heading => (h.results heading).trans hd.issued (h'.results heading)⟩
  rcases List.mem_append.mp he with he | he
  · refine ⟨(hs e he).document, fun n source targets document heading hitem => ?_⟩
    obtain ⟨⟨v, hv, hsource⟩, hdocument⟩ := (hs e he).items n source targets document heading hitem
    have hkept : l''.record.resultOf heading = some v := (hv ▸ h'.results heading).eq_some
    exact ⟨⟨v, hkept, hsource⟩, Nat.le_trans hdocument hd'.issued⟩
  · exact hs' e he

/-- Whatever lists something in the end has an id that was given out by then. -/
theorem Signs.dated (h : l.Signs l') (hg : l.graph.Dated) (hl : l'.Labelled) :
    l'.graph.Dated := by
  obtain ⟨written, hd, hs⟩ := h.delivers
  refine hg.delivers hd fun n source targets document heading hitem => ?_
  obtain ⟨⟨v, hv, hsource⟩, hdocument⟩ := (hs _ hitem).items _ _ _ _ _ rfl
  exact ⟨hsource ▸ (hl heading v hv).2, hdocument⟩

/-- What writing a record adds to its lists: for each document and heading, edge by edge. -/
structure Lists (l : Ledger) (added : ElementId → Option ItemProperty → List (List ElementId))
    (l' : Ledger) : Prop where
  signs    : l.Signs l'
  labelled : l'.Labelled
  fills    : l.record.Fills l'.record
  listed   : ∀ document heading,
    l'.listed document heading = l.listed document heading ++ added document heading

theorem Lists.refl (hm : l.graph.IsMemory) (hl : l.Labelled) : l.Lists (fun _ _ => []) l :=
  ⟨.of_record hm fun _ => rfl, hl, .refl _, fun _ _ => (List.append_nil _).symm⟩

/-- What is listed later comes later. -/
theorem Lists.trans {added added' : ElementId → Option ItemProperty → List (List ElementId)}
    (h : l.Lists added l') (h' : l'.Lists added' l'') :
    l.Lists (fun document heading => added document heading ++ added' document heading) l'' where
  signs := h.signs.trans h'.signs
  labelled := h'.labelled
  fills := h.fills.trans h'.fills
  listed document heading := by
    rw [h'.listed, h.listed, List.append_assoc]

/-- Run from a ledger in order, the action adds to the lists of the record or fails. -/
def Enters {α : Type} (act : Writing α) (l : Ledger)
    (added : ElementId → Option ItemProperty → List (List ElementId)) (post : α → Ledger → Prop) :
    Prop :=
  l.graph.Dated → l.Labelled →
    Ensures act l (fun a l' => l.Lists added l' ∧ post a l') fun _ _ => True

section Enters

variable {α β : Type} {act : Writing α} {post : α → Ledger → Prop}
  {added added' : ElementId → Option ItemProperty → List (List ElementId)}

theorem enters_pure {a : α} (h : post a l) : Enters (pure a) l (fun _ _ => []) post :=
  fun hg hl => ensures_pure.mpr ⟨.refl hg.memory hl, h⟩

/-- What comes next lists after the first. -/
theorem Enters.bind {f : α → Writing β} {post' : β → Ledger → Prop} (h : Enters act l added post)
    (hf : ∀ a l', l.Lists added l' → post a l' → Enters (f a) l' added' post') :
    Enters (act >>= f) l (fun document heading => added document heading ++ added' document heading)
      post' := by
  intro hg hl
  refine ensures_bind.mpr ((h hg hl).mono (fun a l₁ h₁ => ?_) fun _ _ _ => trivial)
  have hnext := hf a l₁ h₁.1 h₁.2 (h₁.1.signs.dated hg h₁.1.labelled) h₁.1.labelled
  exact hnext.mono (fun b l₂ h₂ => ⟨h₁.1.trans h₂.1, h₂.2⟩) fun _ _ _ => trivial

/-- What is entered may be said in another way. -/
theorem Enters.congr (h : Enters act l added post)
    (heq : ∀ document heading, added document heading = added' document heading) :
    Enters act l added' post := by
  rwa [show added = added' from funext fun document => funext (heq document)] at h

end Enters

/-! ### Results -/

theorem resultSet_ensures : Ensures resultSet l (fun _ l' => l' = l) fun _ _ => True := by
  unfold resultSet
  rw [ensures_bind, ensures_get]
  cases l.record.begunResultSet with
  | ok hub => exact ensures_ofExcept_ok.mpr rfl
  | error fault => exact ensures_ofExcept_error.mpr trivial

/-- A new result lists nothing, because all that lists something is older. -/
theorem newResult_enters {v : Vertex} {kind : LinkKind} {note : VertexRef → Record → Record}
    (hlabel : v.label ≠ .document) (hfills : ∀ result (r : Record), r.Fills (note result r))
    (hnote : ∀ result r heading, (note result r).resultOf heading
      = if resultLabel heading = v.label then some result else r.resultOf heading)
    (hnone : ∀ heading, resultLabel heading = v.label → l.record.resultOf heading = none) :
    Enters (newResult v kind note) l (fun _ _ => []) fun result l' =>
      ∀ heading, resultLabel heading = v.label → l'.record.resultOf heading = some result := by
  intro hg hl
  refine ensures_bind.mpr (resultSet_ensures.mono (fun hub l₀ h₀ => ?_) fun _ _ _ => trivial)
  rw [h₀]
  refine ensures_bind.mpr (ensures_onPart.mpr ((Graph.vertex_delivers hg.memory v).mono
    (fun result g₁ h₁ => ?_) fun _ _ _ => trivial))
  refine ensures_bind.mpr (ensures_discard.mpr (ensures_onPart.mpr
    ((Graph.edge_delivers h₁.1.memory _).mono (fun n g₂ h₂ => ?_) fun _ _ _ => trivial)))
  have hd := h₁.1.trans h₂
  obtain ⟨hnew, hissued⟩ := hd.ids _ (List.mem_append_left _ (List.mem_singleton_self _))
  change l.graph.issued < result.id.value at hnew
  change result.id.value ≤ g₂.issued at hissued
  have hset (heading : Option ItemProperty) (h : resultLabel heading = v.label) :
      (note result l.record).resultOf heading = some result := by
    rw [hnote, if_pos h]
  have hkept (heading : Option ItemProperty) (h : resultLabel heading ≠ v.label) :
      (note result l.record).resultOf heading = l.record.resultOf heading := by
    rw [hnote, if_neg h]
  refine ⟨⟨⟨⟨_, hd, ?_⟩, fun heading => ?_⟩, fun heading u hu => ?_, hfills _ _,
    fun document heading => ?_⟩, hset⟩
  -- Both elements are of the expected label, and neither is an item edge.
  · intro e he
    rcases List.mem_append.mp he with he | he
    · rw [List.mem_singleton.mp he]
      refine ⟨?_, by simp⟩
      cases v <;> first | rfl | exact absurd rfl hlabel
    · rw [List.mem_singleton.mp he]
      exact ⟨rfl, by simp⟩
  -- A heading whose result is this one had none before; every other keeps what it had.
  · by_cases h : resultLabel heading = v.label
    · exact .inr ⟨hnone heading h, result, hset heading h, hnew⟩
    · exact .inl (hkept heading h)
  · by_cases h : resultLabel heading = v.label
    · cases (hset heading h).symm.trans hu
      exact ⟨h₁.2.trans h.symm, hissued⟩
    · obtain ⟨hlabel, hold⟩ := hl heading u ((hkept heading h).symm.trans hu)
      exact ⟨hlabel, Nat.le_trans hold hd.issued⟩
  -- The new result lists nothing yet: its id is above every id that an item edge has named.
  · have helements (source : ElementId) :
        itemsIn g₂.elements source document heading
          = itemsIn l.graph.elements source document heading := by
      rw [hd.elements, itemsIn_append]
      simp [itemsIn, Element.items?]
    by_cases h : resultLabel heading = v.label
    · rw [listed_of_none (hnone heading h), listed_of_some (hset heading h), helements]
      refine itemsIn_eq_nil fun n targets hitem => ?_
      have hold := (hg.items n _ targets document heading hitem).1
      omega
    · simp only [listed, hkept heading h, helements, List.append_nil]

/-- A reference result is entered without listing anything. -/
theorem referenceResult_enters : Enters referenceResult l (fun _ _ => [])
    fun result l' => ∀ property, l'.record.resultOf (some property) = some result := by
  intro hg hl
  refine ensures_bind.mpr (ensures_get.mpr ?_)
  split
  · rename_i result hresult
    exact enters_pure (fun _ => hresult) hg hl
  · rename_i hnone
    refine (newResult_enters (by simp [Vertex.label]) (fun _ _ => ⟨_, _, rfl⟩)
      (fun result r heading => ?_) (fun heading hlabel => ?_) hg hl).mono
      (fun result l' h => ⟨h.1, fun property => h.2 (some property) rfl⟩) fun _ _ h => h
    · cases heading <;> rfl
    · cases heading with
      | none => cases hlabel
      | some property => exact hnone

/-- A definition result is entered without listing anything. -/
theorem definitionResult_enters : Enters definitionResult l (fun _ _ => [])
    fun result l' => l'.record.resultOf none = some result := by
  intro hg hl
  refine ensures_bind.mpr (ensures_get.mpr ?_)
  split
  · rename_i result hresult
    exact enters_pure hresult hg hl
  · rename_i hnone
    refine (newResult_enters (by simp [Vertex.label]) (fun _ _ => ⟨_, _, rfl⟩)
      (fun result r heading => ?_) (fun heading hlabel => ?_) hg hl).mono
      (fun result l' h => ⟨h.1, h.2 none rfl⟩) fun _ _ h => h
    · cases heading <;> rfl
    · cases heading with
      | none => exact hnone
      | some property => cases hlabel

/-! ### Partitions -/

/-- Edges for one document and heading. -/
def entry (document : ElementId) (heading : Option ItemProperty) (edges : List (List ElementId))
    (document' : ElementId) (heading' : Option ItemProperty) : List (List ElementId) :=
  if document' = document ∧ heading' = heading then edges else []

/-- One edge lists one batch under its heading. -/
theorem item_enters {v : VertexRef} {document : ElementId} {heading : Option ItemProperty}
    {property : ItemProperty} (hproperty : ∀ other, heading = some other → other = property)
    (hv : l.record.resultOf heading = some v) (hdocument : document.value ≤ l.graph.issued)
    (ids : List ElementId) :
    Enters (discard (Graph.item v ids document property) : Writing Unit) l
      (entry document heading [ids]) fun _ l' => l'.record = l.record := by
  intro hg hl
  have hedge : Edge.listing v ids document property = some (.item v.id ids document heading) := by
    unfold Edge.listing
    rw [(hl heading v hv).1]
    cases heading with
    | none => rfl
    | some other => rw [hproperty other rfl]; rfl
  refine ensures_discard.mpr (ensures_onPart.mpr ?_)
  unfold Graph.item
  rw [hedge]
  refine (Graph.edge_delivers hg.memory _).mono (fun n g' hd => ?_) fun _ _ _ => trivial
  refine ⟨⟨⟨⟨_, hd, fun e he => ?_⟩, fun _ => .inl rfl⟩, fun heading' u hu => ?_, .refl _,
    fun document' heading' => ?_⟩, rfl⟩
  · rw [List.mem_singleton.mp he]
    refine ⟨rfl, fun n source targets document' heading' hitem => ?_⟩
    cases hitem
    exact ⟨⟨v, hv, rfl⟩, Nat.le_trans hdocument hd.issued⟩
  · exact ⟨(hl heading' u hu).1, Nat.le_trans (hl heading' u hu).2 hd.issued⟩
  · by_cases hheading : heading' = heading
    · subst hheading
      rw [listed_of_some hv, listed_of_some (l := ⟨l.record, g'⟩) hv, hd.elements, itemsIn_append]
      by_cases hsame : document' = document
      · simp [itemsIn, Element.items?, entry, hsame]
      · have hother : ¬ document = document' := fun h => hsame h.symm
        simp [itemsIn, Element.items?, entry, hsame, hother]
    · have hother : ¬ heading = heading' := fun h => hheading h.symm
      cases hu : l.record.resultOf heading' with
      | none =>
          rw [listed_of_none hu, listed_of_none (l := ⟨l.record, g'⟩) hu]
          simp [entry, hheading]
      | some u =>
          rw [listed_of_some hu, listed_of_some (l := ⟨l.record, g'⟩) hu, hd.elements,
            itemsIn_append]
          simp [itemsIn, Element.items?, entry, hheading, hother]

/-- By induction on the entries: each that is not empty is listed under its heading. -/
theorem listEntries_enters {v : VertexRef} {p : Partition}
    (entries : List (List ElementId × ItemProperty))
    (hv : ∀ property, l.record.resultOf (some property) = some v)
    (hdocument : p.document.value ≤ l.graph.issued) :
    Enters (entries.forM (listEntry p v)) l
      (fun document heading => entries.flatMap fun e =>
        entry p.document (some e.2) (batch e.1) document heading) fun _ _ => True := by
  induction entries generalizing l with
  | nil => exact enters_pure trivial
  | cons e rest ih =>
      have hentry : Enters (listEntry p v e) l
          (entry p.document (some e.2) (batch e.1)) fun _ l' => l'.record = l.record := by
        unfold listEntry
        by_cases hnil : e.1.isEmpty = true
        · rw [if_pos hnil]
          refine Enters.congr (enters_pure ?_) fun document heading => ?_
          · rfl
          · simp [entry, batch, hnil]
        · rw [if_neg hnil]
          refine (item_enters (by simp) (hv e.2) hdocument e.1).congr fun document heading => ?_
          simp [batch, hnil]
      refine (hentry.bind fun _ l' hl' hrecord => ih (hrecord ▸ hv) ?_).congr fun _ _ => rfl
      exact Nat.le_trans hdocument hl'.signs.issued

/-- The references of a partition are listed, property by property. -/
theorem listReferences_enters {p : Partition} (hdocument : p.document.value ≤ l.graph.issued) :
    Enters (listReferences p) l
      (fun document heading => p.listed.flatMap fun e =>
        entry p.document (some e.2) (batch e.1) document heading) fun _ _ => True := by
  unfold listReferences
  by_cases hp : p.hasReferences = true
  · rw [if_pos hp]
    refine (referenceResult_enters.bind fun result l' hl' hresult =>
      listEntries_enters p.listed hresult ?_).congr fun _ _ => rfl
    exact Nat.le_trans hdocument hl'.signs.issued
  · have hempty (property : ItemProperty) : p.under property = [] := by
      refine List.eq_nil_iff_forall_not_mem.mpr fun id hid => ?_
      exact hp (Partition.hasReferences_iff.mpr ⟨property, id, hid⟩)
    rw [if_neg hp]
    refine (enters_pure trivial).congr fun document heading => ?_
    refine (List.flatMap_eq_nil_iff.mpr fun e he => ?_).symm
    rw [Partition.mem_listed.mp he, hempty]
    simp [entry]

/-- **A partition is listed** by one edge for each heading under which it holds anything. -/
theorem flush_enters {p : Partition} (hdocument : p.document.value ≤ l.graph.issued) :
    Enters (flush p) l
      (fun document heading => if document = p.document then batch (p.filed heading) else [])
      fun _ _ => True := by
  have hsum (document : ElementId) (heading : Option ItemProperty) :
      entry p.document none (batch p.definitionRanges) document heading ++
        (p.listed.flatMap fun e => entry p.document (some e.2) (batch e.1) document heading)
      = if document = p.document then batch (p.filed heading) else [] := by
    by_cases hsame : document = p.document
    · cases heading with
      | none => simp [entry, hsame, Partition.filed]
      | some property =>
          cases property <;> simp [entry, hsame, Partition.listed, Partition.filed, Partition.under]
    · simp [entry, hsame]
  unfold flush
  dsimp only
  by_cases hnil : p.definitionRanges.isEmpty = true
  · rw [if_pos hnil]
    refine (listReferences_enters hdocument).congr fun document heading => ?_
    rw [← hsum]
    simp [entry, batch, hnil]
  · rw [if_neg hnil]
    refine (definitionResult_enters.bind fun result l₁ h₁ hresult => (item_enters (by simp) hresult
      (Nat.le_trans hdocument h₁.signs.issued) p.definitionRanges).bind fun _ l₂ h₂ _ =>
        listReferences_enters (Nat.le_trans hdocument (h₁.signs.trans h₂.signs).issued)).congr
      fun document heading => ?_
    rw [← hsum]
    simp [batch, hnil]

end Ledger

end SymbolGraph
