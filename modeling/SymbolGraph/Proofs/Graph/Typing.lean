import Mathlib.Data.List.Nodup
import SymbolGraph.Graph.Emission
import SymbolGraph.Proofs.Action

/-!
# Proofs — Graph — what a delivered edge may refer to

A graph is read from its beginning, so an edge may only refer to vertices that were delivered before
it, and each kind of edge only to vertices of certain labels.

* `Edge.RefersTo`: what an edge may refer to, given the elements before it.
* `Graph.Sound`: a graph over a memory whose elements are numbered by the calls that delivered them
  and counted, and whose edges refer to what they may.
* `Graph.vertex_ensures`, `Graph.edge_ensures`: emission keeps a graph sound.  A refused element
  leaves the delivered ones as they were.
-/

namespace SymbolGraph

/-! ### The ids of document symbols -/

mutual

/-- The ids in a tree of document symbols. -/
def SymbolTree.ids : SymbolTree → List ElementId
  | .node id children => id :: SymbolTree.idsOf children

/-- The ids in a list of trees. -/
def SymbolTree.idsOf : List SymbolTree → List ElementId
  | []            => []
  | tree :: trees => tree.ids ++ SymbolTree.idsOf trees

end

theorem SymbolTree.idsOf_append (trees more : List SymbolTree) :
    SymbolTree.idsOf (trees ++ more) = SymbolTree.idsOf trees ++ SymbolTree.idsOf more := by
  induction trees with
  | nil => rfl
  | cons tree trees ih =>
      simp only [List.cons_append, SymbolTree.idsOf, ih, List.append_assoc]

/-! ### References between elements -/

/-- A vertex with this label has been delivered under this id. -/
def Delivered (elements : List Element) (label : VertexLabel) (id : ElementId) : Prop :=
  ∃ v : Vertex, v.label = label ∧ Element.vertex id v ∈ elements

theorem Delivered.mono {earlier later : List Element} (h : earlier <+: later)
    {label : VertexLabel} {id : ElementId} (hd : Delivered earlier label id) :
    Delivered later label id := by
  obtain ⟨v, hv, hmem⟩ := hd
  exact ⟨v, hv, h.subset hmem⟩

/-- What a link of a kind may join, given the elements delivered before it. -/
def LinkKind.Joins (earlier : List Element) : LinkKind → ElementId → ElementId → Prop
  | .next,           source, target =>
      (Delivered earlier .range source ∨ Delivered earlier .resultSet source)
        ∧ Delivered earlier .resultSet target
  | .moniker,        source, target =>
      Delivered earlier .resultSet source ∧ Delivered earlier .moniker target
  | .attach,         source, target =>
      Delivered earlier .moniker source ∧ Delivered earlier .moniker target
  | .hover,          source, target =>
      Delivered earlier .resultSet source ∧ Delivered earlier .hoverResult target
  | .definition,     source, target =>
      Delivered earlier .resultSet source ∧ Delivered earlier .definitionResult target
  | .references,     source, target =>
      Delivered earlier .resultSet source ∧ Delivered earlier .referenceResult target
  | .documentSymbol, source, target =>
      Delivered earlier .document source ∧
        ∃ forest, Element.vertex target (.documentSymbolResult forest) ∈ earlier ∧
          ∀ id ∈ SymbolTree.idsOf forest, Delivered earlier .range id

/-- What a reference result lists under a property: other reference results under the one that is
theirs, and ranges under the others. -/
def ItemProperty.targetLabel : ItemProperty → VertexLabel
  | .referenceResults => .referenceResult
  | _                 => .range

/-- What an edge may refer to, given the elements delivered before it.  Only a reference result
lists under a property. -/
def Edge.RefersTo (earlier : List Element) : Edge → Prop
  | .contains source targets =>
      (Delivered earlier .project source ∧ ∀ id ∈ targets, Delivered earlier .document id) ∨
        (Delivered earlier .document source ∧ ∀ id ∈ targets, Delivered earlier .range id)
  | .item source targets document property =>
      Delivered earlier .document document ∧
        match property with
        | none => Delivered earlier .definitionResult source ∧
            ∀ id ∈ targets, Delivered earlier .range id
        | some role => Delivered earlier .referenceResult source ∧
            ∀ id ∈ targets, Delivered earlier role.targetLabel id
  | .link kind source target => kind.Joins earlier source target

theorem LinkKind.Joins.mono {earlier later : List Element} (h : earlier <+: later)
    {kind : LinkKind} {source target : ElementId} (hj : kind.Joins earlier source target) :
    kind.Joins later source target := by
  cases kind with
  | next => exact ⟨hj.1.imp (·.mono h) (·.mono h), hj.2.mono h⟩
  | moniker | attach | hover | definition | references => exact ⟨hj.1.mono h, hj.2.mono h⟩
  | documentSymbol =>
      obtain ⟨hs, forest, hmem, hids⟩ := hj
      exact ⟨hs.mono h, forest, h.subset hmem, fun id hid => (hids id hid).mono h⟩

theorem Edge.RefersTo.mono {earlier later : List Element} (h : earlier <+: later) {e : Edge}
    (he : e.RefersTo earlier) : e.RefersTo later := by
  cases e with
  | contains source targets =>
      rcases he with ⟨hs, ht⟩ | ⟨hs, ht⟩
      · exact .inl ⟨hs.mono h, fun id hid => (ht id hid).mono h⟩
      · exact .inr ⟨hs.mono h, fun id hid => (ht id hid).mono h⟩
  | item source targets document property =>
      obtain ⟨hd, hrest⟩ := he
      refine ⟨hd.mono h, ?_⟩
      cases property with
      | none => exact ⟨hrest.1.mono h, fun id hid => (hrest.2 id hid).mono h⟩
      | some role => exact ⟨hrest.1.mono h, fun id hid => (hrest.2 id hid).mono h⟩
  | link kind source target => exact LinkKind.Joins.mono h he

/-! ### Sound graphs -/

namespace Graph

/-- The ids that calls to a sink take when those that the faults name are refused: a delivered
element is numbered by its call, from one. -/
def deliveredIds (faults : Nat → Option SinkFault) (calls : Nat) : List ElementId :=
  ((List.range calls).filter fun n => (faults n).isNone).map fun n => ⟨n + 1⟩

/-- A graph over a memory with these faults, numbered by its calls, that has counted its elements and
in which every edge refers to what it may. -/
structure Sound (faults : Nat → Option SinkFault) (g : Graph) : Prop where
  memory  : ∃ kept, g.sink = .memory faults g.issued kept
  ids     : g.elements.map Element.id = deliveredIds faults g.issued
  edges   : ∀ (i : Nat) (id : ElementId) (e : Edge),
    g.elements[i]? = some (.edge id e) → e.RefersTo (g.elements.take i)
  emitted : g.emitted = g.elements.length

open SymbolGraph.Action

variable {faults : Nat → Option SinkFault} {g : Graph}

theorem deliveredIds_pairwise (calls : Nat) :
    (deliveredIds faults calls).Pairwise fun a b => a.value < b.value := by
  unfold deliveredIds
  rw [List.pairwise_map]
  exact (List.pairwise_lt_range.filter _).imp fun h => Nat.succ_lt_succ h

theorem deliveredIds_le {calls : Nat} {id : ElementId} (h : id ∈ deliveredIds faults calls) :
    id.value ≤ calls := by
  unfold deliveredIds at h
  obtain ⟨n, hn, rfl⟩ := List.mem_map.mp h
  have hlt := List.mem_range.mp (List.mem_filter.mp hn).1
  exact hlt

/-- Without faults the ids are the first numbers. -/
theorem deliveredIds_of_none {calls : Nat} (h : ∀ n < calls, faults n = none) :
    deliveredIds faults calls = (List.range calls).map fun n => ⟨n + 1⟩ := by
  unfold deliveredIds
  rw [List.filter_eq_self.mpr]
  intro n hn
  rw [h n (List.mem_range.mp hn)]
  rfl

namespace Sound

theorem id_le (h : g.Sound faults) {e : Element} (he : e ∈ g.elements) :
    e.id.value ≤ g.issued := by
  have hmem : e.id ∈ deliveredIds faults g.issued := by
    rw [← h.ids]
    exact List.mem_map_of_mem he
  exact deliveredIds_le hmem

/-- No two elements have one id. -/
theorem nodup_ids (h : g.Sound faults) : (g.elements.map Element.id).Nodup := by
  rw [h.ids]
  exact (deliveredIds_pairwise g.issued).imp fun hlt heq => by
    rw [heq] at hlt
    exact Nat.lt_irrefl _ hlt

theorem vertex_unique (h : g.Sound faults) {id : ElementId} {v v' : Vertex}
    (hv : Element.vertex id v ∈ g.elements) (hv' : Element.vertex id v' ∈ g.elements) :
    v = v' :=
  (Element.vertex.inj (List.inj_on_of_nodup_map h.nodup_ids hv hv' rfl)).2

theorem label_unique (h : g.Sound faults) {id : ElementId} {label label' : VertexLabel}
    (hd : Delivered g.elements label id) (hd' : Delivered g.elements label' id) :
    label = label' := by
  obtain ⟨v, rfl, hv⟩ := hd
  obtain ⟨v', rfl, hv'⟩ := hd'
  rw [h.vertex_unique hv hv']

theorem refersTo (h : g.Sound faults) {id : ElementId} {e : Edge}
    (he : Element.edge id e ∈ g.elements) : e.RefersTo g.elements := by
  obtain ⟨i, hi⟩ := List.mem_iff_getElem?.mp he
  exact (h.edges i id e hi).mono (List.take_prefix i _)

/-- What came later has a greater id. -/
theorem id_lt_of_later (h : g.Sound faults) {earlier : List Element} (hpre : earlier <+: g.elements)
    {e later : Element} (he : e ∈ earlier) (hlater : later ∈ g.elements)
    (hnew : ∀ known ∈ earlier, known.id ≠ later.id) : e.id.value < later.id.value := by
  obtain ⟨rest, heq⟩ := hpre
  have hids : (g.elements.map Element.id).Pairwise fun a b => a.value < b.value :=
    h.ids ▸ deliveredIds_pairwise g.issued
  rw [← heq] at hids hlater
  have hrest := (List.mem_append.mp hlater).resolve_left fun hmem => hnew later hmem rfl
  exact (List.pairwise_append.mp (List.pairwise_map.mp hids)).2.2 e he later hrest

/-- The next id is new to the graph. -/
theorem id_ne_next (h : g.Sound faults) {e : Element} (he : e ∈ g.elements) :
    e.id ≠ ⟨g.issued + 1⟩ := by
  intro heq
  have hle := h.id_le he
  rw [heq] at hle
  exact Nat.not_succ_le_self _ hle

end Sound

/-! ### Emission -/

/-- The graph after its sink took an element under the next id. -/
def Took (faults : Nat → Option SinkFault) (g : Graph) (e : Element) (g' : Graph) : Prop :=
  g'.Sound faults ∧ g'.elements = g.elements ++ [e] ∧ e.id = ⟨g.issued + 1⟩

/-- The graph after its sink refused an element: an id is used up, and nothing else happened. -/
def Refused (faults : Nat → Option SinkFault) (g : Graph) (fault : Fault) (g' : Graph) : Prop :=
  g'.Sound faults ∧ g'.elements = g.elements ∧ ∃ reason, fault = .sink reason

theorem deliveredIds_succ (calls : Nat) :
    deliveredIds faults (calls + 1) = deliveredIds faults calls ++
      if (faults calls).isNone then [⟨calls + 1⟩] else [] := by
  unfold deliveredIds
  rw [List.range_succ, List.filter_append, List.map_append]
  cases hfault : faults calls with
  | none => simp [hfault]
  | some fault => simp [hfault]

/-- A memory keeps an element unless the call is one that fails. -/
theorem emit_memory (e : Element) (calls : Nat) (kept : Array Element) :
    Sink.emit e (.memory faults calls kept) =
      match faults calls with
      | none       => .ok () (.memory faults (calls + 1) (kept.push e))
      | some fault => .error fault (.memory faults (calls + 1) kept) := by
  have hget (sink : Sink) : (get : EStateM SinkFault Sink Sink) sink = .ok sink sink := rfl
  unfold Sink.emit
  simp only [bind, EStateM.bind, hget]
  cases faults calls <;> rfl

/-- The elements in order, with one more edge that refers to what it may. -/
theorem Sound.edges_concat (h : g.Sound faults) {e : Element}
    (he : ∀ id edge, e = .edge id edge → edge.RefersTo g.elements) (i : Nat) (id : ElementId)
    (edge : Edge) (hi : (g.elements ++ [e])[i]? = some (.edge id edge)) :
    edge.RefersTo ((g.elements ++ [e]).take i) := by
  rcases Nat.lt_or_ge i g.elements.length with hlt | hge
  · rw [List.getElem?_append_left hlt] at hi
    rw [List.take_append_of_le_length (Nat.le_of_lt hlt)]
    exact h.edges i id edge hi
  · obtain rfl : i = g.elements.length := by
      have hbound := (List.getElem?_eq_some_iff.mp hi).1
      rw [List.length_append, List.length_singleton] at hbound
      omega
    rw [List.getElem?_concat_length] at hi
    rw [List.take_left]
    exact he id edge (Option.some.inj hi)

/-- An element under the next id is taken or refused, as the faults say. -/
theorem deliver_ensures (h : g.Sound faults) (e : Element) (hid : e.id = ⟨g.issued + 1⟩)
    (he : ∀ id edge, e = .edge id edge → edge.RefersTo g.elements) :
    Ensures (deliver e) { g with issued := g.issued + 1 }
      (fun _ g' => g.Took faults e g') (g.Refused faults) := by
  obtain ⟨kept, hsink⟩ := h.memory
  have hkept : kept.toList = g.elements := by
    unfold elements
    rw [hsink]
    rfl
  have hids := h.ids
  unfold Ensures deliver
  simp only [hsink, emit_memory]
  -- The sink takes the element or refuses it; in both cases the id has been spent.
  cases hfault : faults g.issued with
  | none =>
      have htook : (kept.push e).toList = g.elements ++ [e] := by
        rw [Array.toList_push, hkept]
      refine ⟨⟨⟨_, rfl⟩, ?_, ?_, ?_⟩, htook, hid⟩
      · show (kept.push e).toList.map Element.id = deliveredIds faults (g.issued + 1)
        rw [htook, List.map_append, hids, deliveredIds_succ, hfault]
        simp [hid]
      · show ∀ (i : Nat) (id : ElementId) (edge : Edge),
          (kept.push e).toList[i]? = some (.edge id edge) →
            edge.RefersTo ((kept.push e).toList.take i)
        rw [htook]
        exact h.edges_concat he
      · show g.emitted + 1 = (kept.push e).toList.length
        rw [htook, h.emitted, List.length_append, List.length_singleton]
  | some fault =>
      refine ⟨⟨⟨_, rfl⟩, ?_, ?_, ?_⟩, hkept, ⟨fault, rfl⟩⟩
      · show kept.toList.map Element.id = deliveredIds faults (g.issued + 1)
        rw [hkept, hids, deliveredIds_succ, hfault]
        simp
      · show ∀ (i : Nat) (id : ElementId) (edge : Edge),
          kept.toList[i]? = some (.edge id edge) → edge.RefersTo (kept.toList.take i)
        rw [hkept]
        exact h.edges
      · exact h.emitted.trans (congrArg List.length hkept.symm)

/-- Emitting a vertex gives back its handle. -/
theorem vertex_ensures (h : g.Sound faults) (v : Vertex) :
    Ensures (vertex v) g
      (fun ref g' => g.Took faults (.vertex ref.id v) g' ∧ ref.label = v.label)
      (g.Refused faults) := by
  unfold vertex freshId
  simp only [ensures_bind, ensures_modify, ensures_get, ensures_pure]
  refine (deliver_ensures h (.vertex ⟨g.issued + 1⟩ v) rfl ?_).mono
    (fun _ _ ht => ⟨ht, trivial⟩) fun _ _ ht => ht
  intro id edge heq
  cases heq

/-- An edge may be emitted when it refers to what it may. -/
theorem edge_ensures (h : g.Sound faults) {e : Edge} (he : e.RefersTo g.elements) :
    Ensures (edge e) g (fun id g' => g.Took faults (.edge id e) g') (g.Refused faults) := by
  unfold edge freshId
  simp only [ensures_bind, ensures_modify, ensures_get, ensures_pure]
  refine (deliver_ensures h (.edge ⟨g.issued + 1⟩ e) rfl ?_).mono
    (fun _ _ ht => ht) fun _ _ ht => ht
  intro id edge heq
  cases heq
  exact he

end Graph

end SymbolGraph
