import SymbolGraph.Graph.Query
import SymbolGraph.Proofs.Graph.Typing

/-!
# Proofs — Graph — what a list of elements says

The four things that the edges and vertices of a list say, each as a relation that grows with the
list: which ranges were tagged how, what is linked to what, what a result lists for a document, and
what a document contains.

* `tagged_append`, `linked_append`, `listed_append`, `contained_append`: what more elements say.
* `firstTarget_eq_some`, `firstTarget_eq_none`, `mem_outgoing_item`: how a reader of the list sees
  them.
-/

namespace SymbolGraph

/-- A range with this tag was delivered. -/
def Tagged (elements : List Element) (id : ElementId) (tag : RangeTag) : Prop :=
  ∃ span, Element.vertex id (.range span (some tag)) ∈ elements

/-- A link of this kind leads from `source` to `target`. -/
def Linked (elements : List Element) (kind : LinkKind) (source target : ElementId) : Prop :=
  ∃ e, Element.edge e (.link kind source target) ∈ elements

/-- The result `source` lists `id` for a document, under a property if it is a reference result. -/
def Listed (elements : List Element) (source : ElementId) (property : Option ItemProperty)
    (document id : ElementId) : Prop :=
  ∃ e targets, Element.edge e (.item source targets document property) ∈ elements ∧ id ∈ targets

/-- `source` contains `id`. -/
def Contained (elements : List Element) (source id : ElementId) : Prop :=
  ∃ e targets, Element.edge e (.contains source targets) ∈ elements ∧ id ∈ targets

section Append

variable {earlier later : List Element}

theorem tagged_append {id : ElementId} {tag : RangeTag} :
    Tagged (earlier ++ later) id tag ↔ Tagged earlier id tag ∨ Tagged later id tag := by
  simp only [Tagged, List.mem_append, exists_or]

theorem linked_append {kind : LinkKind} {source target : ElementId} :
    Linked (earlier ++ later) kind source target ↔
      Linked earlier kind source target ∨ Linked later kind source target := by
  simp only [Linked, List.mem_append, exists_or]

theorem listed_append {source document id : ElementId} {property : Option ItemProperty} :
    Listed (earlier ++ later) source property document id ↔
      Listed earlier source property document id ∨ Listed later source property document id := by
  simp only [Listed, List.mem_append, or_and_right, exists_or]

theorem contained_append {source id : ElementId} :
    Contained (earlier ++ later) source id ↔
      Contained earlier source id ∨ Contained later source id := by
  simp only [Contained, List.mem_append, or_and_right, exists_or]

end Append

/-! ### The ends of what is said -/

section Ends

variable {faults : Nat → Option SinkFault} {g : Graph}

theorem Tagged.delivered {elements : List Element} {id : ElementId} {tag : RangeTag}
    (h : Tagged elements id tag) : Delivered elements .range id := by
  obtain ⟨span, hmem⟩ := h
  exact ⟨_, rfl, hmem⟩

theorem Linked.joins (hg : g.Sound faults) {kind : LinkKind} {source target : ElementId}
    (h : Linked g.elements kind source target) : kind.Joins g.elements source target := by
  obtain ⟨e, he⟩ := h
  exact hg.refersTo he

/-- What lists something is a result, of the sort that lists under such a property, and what it
lists is of the sort that is listed there. -/
theorem Listed.refersTo (hg : g.Sound faults) {source document id : ElementId}
    {property : Option ItemProperty} (h : Listed g.elements source property document id) :
    Delivered g.elements .document document ∧
      match property with
      | none      => Delivered g.elements .definitionResult source ∧ Delivered g.elements .range id
      | some role => Delivered g.elements .referenceResult source ∧
          Delivered g.elements role.targetLabel id := by
  obtain ⟨e, targets, he, hid⟩ := h
  obtain ⟨hd, hrest⟩ := hg.refersTo he
  refine ⟨hd, ?_⟩
  cases property with
  | none => exact ⟨hrest.1, hrest.2 id hid⟩
  | some role => exact ⟨hrest.1, hrest.2 id hid⟩

/-- What is contained was delivered. -/
theorem Contained.delivered (hg : g.Sound faults) {source id : ElementId}
    (h : Contained g.elements source id) : ∃ label, Delivered g.elements label id := by
  obtain ⟨e, targets, he, hid⟩ := h
  rcases hg.refersTo he with ⟨-, ht⟩ | ⟨-, ht⟩
  · exact ⟨_, ht id hid⟩
  · exact ⟨_, ht id hid⟩

end Ends

/-! ### Reading the list -/

namespace Query

variable {elements : List Element}

/-- The edges of a list that leave a vertex under a label. -/
theorem mem_outgoing {id : ElementId} {label : EdgeLabel} {e : Edge} :
    e ∈ outgoing elements id label ↔
      (∃ n, Element.edge n e ∈ elements) ∧ e.source = id ∧ e.label = label := by
  unfold outgoing
  simp only [List.mem_filter, List.mem_map, List.mem_filterMap, Bool.and_eq_true, decide_eq_true_eq]
  constructor
  · rintro ⟨⟨⟨n, e'⟩, ⟨element, hmem, helement⟩, rfl⟩, hends⟩
    cases element with
    | vertex n v => cases helement
    | edge n e'' =>
        cases helement
        exact ⟨⟨n, hmem⟩, hends⟩
  · rintro ⟨⟨n, hmem⟩, hends⟩
    exact ⟨⟨(n, e), ⟨_, hmem, rfl⟩, rfl⟩, hends⟩

theorem mem_outgoing_link {id : ElementId} {kind : LinkKind} {e : Edge} :
    e ∈ outgoing elements id (.link kind) ↔
      ∃ target, e = .link kind id target ∧ Linked elements kind id target := by
  rw [mem_outgoing]
  constructor
  · rintro ⟨⟨n, hmem⟩, hsource, hlabel⟩
    cases e with
    | contains source targets => cases hlabel
    | item source targets document property => cases hlabel
    | link kind' source target =>
        cases hlabel
        cases hsource
        exact ⟨target, rfl, n, hmem⟩
  · rintro ⟨target, rfl, n, hmem⟩
    exact ⟨⟨n, hmem⟩, rfl, rfl⟩

/-- The first target is one that a link leads to. -/
theorem linked_of_firstTarget {id target : ElementId} {kind : LinkKind}
    (h : firstTarget elements id kind = some target) : Linked elements kind id target := by
  unfold firstTarget at h
  cases hout : outgoing elements id (.link kind) with
  | nil => rw [hout] at h; cases h
  | cons e rest =>
      rw [hout] at h
      have hmem : e ∈ outgoing elements id (.link kind) := by
        rw [hout]
        exact List.mem_cons_self
      obtain ⟨target', rfl, hlinked⟩ := mem_outgoing_link.mp hmem
      cases h
      exact hlinked

theorem firstTarget_eq_none {id : ElementId} {kind : LinkKind} :
    firstTarget elements id kind = none ↔ ∀ target, ¬ Linked elements kind id target := by
  constructor
  · intro h target hlinked
    have hmem := mem_outgoing_link.mpr ⟨target, rfl, hlinked⟩
    unfold firstTarget at h
    cases hout : outgoing elements id (.link kind) with
    | nil => rw [hout] at hmem; cases hmem
    | cons e rest =>
        rw [hout] at h
        have hhead : e ∈ outgoing elements id (.link kind) := by
          rw [hout]
          exact List.mem_cons_self
        obtain ⟨target', rfl, -⟩ := mem_outgoing_link.mp hhead
        cases h
  · intro h
    cases hfirst : firstTarget elements id kind with
    | none => rfl
    | some target => exact absurd (linked_of_firstTarget hfirst) (h target)

/-- Where links of a kind lead to one target only, that is the first one. -/
theorem firstTarget_eq_some {id target : ElementId} {kind : LinkKind}
    (h : Linked elements kind id target)
    (hunique : ∀ target', Linked elements kind id target' → target' = target) :
    firstTarget elements id kind = some target := by
  cases hfirst : firstTarget elements id kind with
  | none => exact absurd h (firstTarget_eq_none.mp hfirst target)
  | some target' => rw [hunique target' (linked_of_firstTarget hfirst)]

/-- Where links of a kind lead to what a handle says, that is the first one. -/
theorem firstTarget_eq_map {id : ElementId} {kind : LinkKind} {handle : Option VertexRef}
    (h : ∀ target, Linked elements kind id target ↔ ∃ u, handle = some u ∧ u.id = target) :
    firstTarget elements id kind = handle.map VertexRef.id := by
  cases handle with
  | none =>
      refine firstTarget_eq_none.mpr fun target hlinked => ?_
      obtain ⟨u, hu, -⟩ := (h target).mp hlinked
      cases hu
  | some u =>
      refine firstTarget_eq_some ((h u.id).mpr ⟨u, rfl, rfl⟩) fun target hlinked => ?_
      obtain ⟨u', hu', rfl⟩ := (h target).mp hlinked
      cases hu'
      rfl

/-- What the `item` edges of a result list. -/
theorem mem_outgoing_item {source id : ElementId} :
    id ∈ (outgoing elements source .item).flatMap Edge.targets ↔
      ∃ property document, Listed elements source property document id := by
  rw [List.mem_flatMap]
  constructor
  · rintro ⟨e, he, hid⟩
    obtain ⟨⟨n, hmem⟩, hsource, hlabel⟩ := mem_outgoing.mp he
    cases e with
    | contains source' targets => cases hlabel
    | link kind source' target => cases hlabel
    | item source' targets document property =>
        cases hsource
        exact ⟨property, document, n, targets, hmem, hid⟩
  · rintro ⟨property, document, n, targets, hmem, hid⟩
    exact ⟨_, mem_outgoing.mpr ⟨⟨n, hmem⟩, rfl, rfl⟩, hid⟩

theorem mem_of_vertex? {id : ElementId} {v : Vertex} (h : vertex? elements id = some v) :
    Element.vertex id v ∈ elements := by
  unfold vertex? at h
  obtain ⟨⟨id', v'⟩, hfind, rfl⟩ := Option.map_eq_some_iff.mp h
  rw [List.findRev?_eq_find?_reverse] at hfind
  obtain rfl : id' = id := by simpa using List.find?_some hfind
  obtain ⟨e, he, hv⟩ :=
    List.mem_filterMap.mp (List.mem_reverse.mp (List.mem_of_find?_eq_some hfind))
  cases e with
  | vertex n v =>
      cases hv
      exact he
  | edge n e => cases hv

/-- A range that a reader sees with a tag has that tag. -/
theorem tagged_of_range? {id : ElementId} {span : LineRange} {tag : RangeTag}
    (h : range? elements id = some (span, some tag)) : Tagged elements id tag := by
  unfold range? at h
  split at h
  · rename_i hvertex
    cases h
    exact ⟨_, mem_of_vertex? hvertex⟩
  · cases h

/-- The definitions of a range are what its first definition result lists. -/
theorem mem_definitions {range id : ElementId} : id ∈ definitions elements range ↔
    ∃ result, firstResult elements range .definition = some result ∧
      ∃ property document, Listed elements result property document id := by
  unfold definitions
  cases firstResult elements range .definition with
  | none => simp
  | some result =>
      simp only [mem_outgoing_item]
      constructor
      · exact fun hlisted => ⟨result, rfl, hlisted⟩
      · rintro ⟨result', hresult', hlisted⟩
        cases hresult'
        exact hlisted

end Query

end SymbolGraph
