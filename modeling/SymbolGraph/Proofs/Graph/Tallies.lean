import SymbolGraph.Proofs.Graph.Reading

/-!
# Proofs — Graph — counting what was delivered

What a list of elements says is told in `Proofs.Graph.Reading`; here is how often it says it.  Three
lists are read off the elements: the documents, what is contained where, and what leads on.  Most of
what a run delivers is *quiet*: it adds to none of the three.

* `documentsIn`, `containmentsIn`, `nextSourcesIn`: the three lists.
* `Graph.Delivers`: a graph over a memory has taken elements, each under a new id.
* `Graph.vertex_delivers`, `Graph.edge_delivers`: emission delivers one element or fails with a
  fault of the sink.
* `Graph.flush_unchanged`: flushing a memory changes nothing.
-/

namespace SymbolGraph

namespace Element

/-- A document, with its id. -/
def document? : Element → Option (ElementId × Vertex)
  | .vertex id (.document uri languageId) => some (id, .document uri languageId)
  | _                                     => none

/-- What an element says is contained, and where. -/
def containment? : Element → Option (ElementId × List ElementId)
  | .edge _ (.contains source targets) => some (source, targets)
  | _                                  => none

/-- What an element says leads on. -/
def nextSource? : Element → Option ElementId
  | .edge _ (.link .next source _) => some source
  | _                              => none

/-- An element that is no document, says neither what is contained nor what leads on, and is no range
without a tag. -/
structure IsQuiet (e : Element) : Prop where
  document    : e.document? = none
  containment : e.containment? = none
  nextSource  : e.nextSource? = none
  tagged      : ∀ id span, e ≠ .vertex id (.range span none)

end Element

/-- The documents among elements, in order. -/
def documentsIn (elements : List Element) : List (ElementId × Vertex) :=
  elements.filterMap Element.document?

/-- What elements say is contained, edge by edge. -/
def containmentsIn (elements : List Element) : List (ElementId × List ElementId) :=
  elements.filterMap Element.containment?

/-- What elements say leads on, edge by edge. -/
def nextSourcesIn (elements : List Element) : List ElementId :=
  elements.filterMap Element.nextSource?

section Append

variable {earlier later : List Element}

/-- The documents of a list of elements are those of its parts, in order. -/
theorem documentsIn_append :
    documentsIn (earlier ++ later) = documentsIn earlier ++ documentsIn later :=
  List.filterMap_append

/-- So is what is contained. -/
theorem containmentsIn_append :
    containmentsIn (earlier ++ later) = containmentsIn earlier ++ containmentsIn later :=
  List.filterMap_append

/-- So is what leads on. -/
theorem nextSourcesIn_append :
    nextSourcesIn (earlier ++ later) = nextSourcesIn earlier ++ nextSourcesIn later :=
  List.filterMap_append

variable (h : ∀ e ∈ later, e.IsQuiet)

include h

/-- Quiet elements make no documents. -/
theorem documentsIn_quiet : documentsIn (earlier ++ later) = documentsIn earlier := by
  rw [documentsIn_append, documentsIn, documentsIn,
    List.filterMap_eq_nil_iff.mpr fun e he => (h e he).document, List.append_nil]

/-- Quiet elements contain nothing. -/
theorem containmentsIn_quiet : containmentsIn (earlier ++ later) = containmentsIn earlier := by
  rw [containmentsIn_append, containmentsIn, containmentsIn,
    List.filterMap_eq_nil_iff.mpr fun e he => (h e he).containment, List.append_nil]

/-- Quiet elements lead nowhere on. -/
theorem nextSourcesIn_quiet : nextSourcesIn (earlier ++ later) = nextSourcesIn earlier := by
  rw [nextSourcesIn_append, nextSourcesIn, nextSourcesIn,
    List.filterMap_eq_nil_iff.mpr fun e he => (h e he).nextSource, List.append_nil]

end Append

/-! ### What is quiet -/

/-- A vertex is quiet unless it is a document or a range without a tag. -/
theorem Element.isQuiet_vertex {id : ElementId} {v : Vertex} (h : v.label ≠ .document)
    (ht : ∀ span, v ≠ .range span none) : (Element.vertex id v).IsQuiet where
  document := by
    cases v with
    | document uri languageId => exact absurd rfl h
    | _ => rfl
  containment := rfl
  nextSource := rfl
  tagged _ span heq := ht span (Element.vertex.inj heq).2

/-- An edge is quiet unless it contains something or leads on. -/
theorem Element.isQuiet_edge {id : ElementId} {e : Edge} (hc : e.label ≠ .contains)
    (hn : e.label ≠ .link .next) : (Element.edge id e).IsQuiet where
  document := rfl
  containment := by
    cases e with
    | contains source targets => exact absurd rfl hc
    | item source targets document property => rfl
    | link kind source target => rfl
  nextSource := by
    cases e with
    | contains source targets => rfl
    | item source targets document property => rfl
    | link kind source target =>
        cases kind with
        | next => exact absurd rfl hn
        | _ => rfl
  tagged _ _ := nofun

/-! ### Where the lists come from -/

/-- The documents are the vertices with that label. -/
theorem mem_documentsIn {elements : List Element} {id : ElementId} {v : Vertex} :
    (id, v) ∈ documentsIn elements ↔ v.label = .document ∧ Element.vertex id v ∈ elements := by
  unfold documentsIn
  rw [List.mem_filterMap]
  constructor
  · rintro ⟨e, he, hv⟩
    cases e with
    | edge n e => cases hv
    | vertex n u =>
        cases u with
        | document uri languageId =>
            cases hv
            exact ⟨rfl, he⟩
        | _ => cases hv
  · rintro ⟨hlabel, he⟩
    refine ⟨_, he, ?_⟩
    cases v with
    | document uri languageId => rfl
    | _ => cases hlabel

/-- Each edge that contains something is counted. -/
theorem mem_containmentsIn {elements : List Element} {source : ElementId}
    {targets : List ElementId} :
    (source, targets) ∈ containmentsIn elements ↔
      ∃ e, Element.edge e (.contains source targets) ∈ elements := by
  unfold containmentsIn
  rw [List.mem_filterMap]
  constructor
  · rintro ⟨e, he, hc⟩
    cases e with
    | vertex n u => cases hc
    | edge n e =>
        cases e with
        | contains source' targets' =>
            cases hc
            exact ⟨n, he⟩
        | _ => cases hc
  · rintro ⟨e, he⟩
    exact ⟨_, he, rfl⟩

/-- A source is counted for each of its edges that leads on. -/
theorem mem_nextSourcesIn {elements : List Element} {source : ElementId} :
    source ∈ nextSourcesIn elements ↔ ∃ target, Linked elements .next source target := by
  unfold nextSourcesIn
  rw [List.mem_filterMap]
  constructor
  · rintro ⟨e, he, hn⟩
    cases e with
    | vertex n u => cases hn
    | edge n e =>
        cases e with
        | link kind source' target =>
            cases kind with
            | next =>
                cases hn
                exact ⟨target, n, he⟩
            | _ => cases hn
        | _ => cases hn
  · rintro ⟨target, n, he⟩
    exact ⟨_, he, rfl⟩

/-! ### Delivery -/

namespace Graph

open SymbolGraph.Action

/-- A graph whose elements are kept in memory. -/
def IsMemory (g : Graph) : Prop := ∃ faults calls kept, g.sink = .memory faults calls kept

/-- A graph over a memory has taken elements, each under a new id. -/
structure Delivers (g : Graph) (written : List Element) (g' : Graph) : Prop where
  memory   : g'.IsMemory
  elements : g'.elements = g.elements ++ written
  issued   : g.issued ≤ g'.issued
  ids      : ∀ e ∈ written, g.issued < e.id.value ∧ e.id.value ≤ g'.issued

variable {g g' g'' : Graph} {written more : List Element}

/-- A sound graph is one over a memory. -/
theorem Sound.isMemory {faults : Nat → Option SinkFault} (h : g.Sound faults) : g.IsMemory := by
  obtain ⟨kept, hsink⟩ := h.memory
  exact ⟨faults, g.issued, kept, hsink⟩

theorem Delivers.refl (h : g.IsMemory) : g.Delivers [] g :=
  ⟨h, (List.append_nil _).symm, Nat.le_refl _, nofun⟩

/-- What is delivered later comes later. -/
theorem Delivers.trans (h : g.Delivers written g') (h' : g'.Delivers more g'') :
    g.Delivers (written ++ more) g'' where
  memory := h'.memory
  elements := by rw [h'.elements, h.elements, List.append_assoc]
  issued := Nat.le_trans h.issued h'.issued
  ids e he := by
    rcases List.mem_append.mp he with he | he
    · exact ⟨(h.ids e he).1, Nat.le_trans (h.ids e he).2 h'.issued⟩
    · exact ⟨Nat.lt_of_le_of_lt h.issued (h'.ids e he).1, (h'.ids e he).2⟩

/-- What was delivered stays. -/
theorem Delivers.keeps (h : g.Delivers written g') : g.elements <+: g'.elements := by
  rw [h.elements]
  exact List.prefix_append _ _

/-- A fault of the sink. -/
def OfSink (fault : Fault) : Prop := ∃ reason, fault = .sink reason

/-- An element under the next id is delivered, or the sink refuses it. -/
theorem deliver_delivers (h : g.IsMemory) {e : Element} (hid : e.id = ⟨g.issued + 1⟩) :
    Ensures (deliver e) { g with issued := g.issued + 1 } (fun _ g' => g.Delivers [e] g')
      fun fault _ => OfSink fault := by
  obtain ⟨faults, calls, kept, hsink⟩ := h
  unfold Ensures deliver
  simp only [hsink, emit_memory]
  cases faults calls with
  | some fault => exact ⟨fault, rfl⟩
  | none =>
      refine ⟨⟨faults, calls + 1, kept.push e, rfl⟩, ?_, Nat.le_succ _, fun e' he' => ?_⟩
      · show (kept.push e).toList = g.sink.elements ++ [e]
        rw [Array.toList_push, hsink]
        rfl
      · rw [List.mem_singleton.mp he', hid]
        exact ⟨Nat.lt_succ_self _, Nat.le_refl _⟩

/-- A vertex is delivered with its label, or the sink refuses it. -/
theorem vertex_delivers (h : g.IsMemory) (v : Vertex) :
    Ensures (vertex v) g
      (fun ref g' => g.Delivers [.vertex ref.id v] g' ∧ ref.label = v.label)
      fun fault _ => OfSink fault := by
  unfold vertex freshId
  simp only [ensures_bind, ensures_modify, ensures_get, ensures_pure]
  exact (deliver_delivers h rfl).mono (fun _ _ hd => ⟨hd, trivial⟩) fun _ _ hs => hs

/-- An edge is delivered, or the sink refuses it. -/
theorem edge_delivers (h : g.IsMemory) (e : Edge) :
    Ensures (edge e) g (fun id g' => g.Delivers [.edge id e] g') fun fault _ => OfSink fault := by
  unfold edge freshId
  simp only [ensures_bind, ensures_modify, ensures_get, ensures_pure]
  exact (deliver_delivers h rfl).mono (fun _ _ hd => hd) fun _ _ hs => hs

/-- Flushing a memory changes nothing, and does not fail. -/
theorem flush_unchanged (h : g.IsMemory) :
    Ensures flush g (fun _ g' => g' = g) fun _ _ => False := by
  obtain ⟨faults, calls, kept, hsink⟩ := h
  unfold Ensures flush
  rw [hsink]
  show { g with sink := .memory faults calls kept } = g
  rw [← hsink]

/-- What was delivered under a new id was not there before. -/
theorem Delivers.new (h : g.Delivers written g') {e : Element} (he : e ∈ written) {x : ElementId}
    (hx : x.value ≤ g.issued) : x ≠ e.id := by
  rintro rfl
  exact absurd (h.ids e he).1 (Nat.not_lt.mpr hx)

end Graph

end SymbolGraph
