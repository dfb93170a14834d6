import SymbolGraph.Proofs.Run.Containment

/-!
# Proofs — Run — no occurrence is lost

An identifier that denotes a symbol has a range of its own, unless a definition of the symbol was
recorded with the same coordinates before.  Whatever was recorded as a definition has a range that
leads to the record (`Store.Backed`), so either way there is a range for the identifier, and it stays
to the end of the run.

* `Run.Ended.occurs_once`: every identifier in a file that was walked has a range that leads to the
  record of its symbol, and every range leads on exactly once.
-/

namespace SymbolGraph

namespace Store

variable {s t : Store}

/-- Nothing is lost when the project says what it contains. -/
theorem Concludes.lasts (h : s.Concludes t) : s.Lasts t := by
  rcases h with ⟨-, rfl⟩ | ⟨e, graph, hd, rfl⟩
  · exact .refl _
  · exact lasts_renew hd.keeps rfl rfl (renews_amends _) fun _ _ hc => hc.toEndures

theorem Concludes.keyed (h : s.Concludes t) (hs : s.Keyed) : t.Keyed := by
  rcases h with ⟨-, rfl⟩ | ⟨e, graph, -, rfl⟩
  · exact hs
  · exact ⟨hs.known, hs.live, hs.single⟩

/-- Containment leads nowhere. -/
theorem Concluded.nextSourcesIn_eq {elements : List Element} (h : s.Concluded elements) :
    nextSourcesIn elements = nextSourcesIn s.elements := by
  rcases h with ⟨-, rfl⟩ | ⟨e, rfl⟩
  · rfl
  · rw [nextSourcesIn_append]
    exact List.append_nil _

end Store

namespace Run

variable {faults : Nat → Option SinkFault} {w : Setting} {s : Session}

/-- A range of the document of a file, at the place of a node, that leads to the result set of the
one record with a key. -/
structure OccursAt (w : Setting) (s : Session) (node : NodeId) (key : SymbolKey)
    (range document : ElementId) (record : RecordId) (hub : VertexRef) : Prop where
  spans     : ∃ tag, Element.vertex range (.range
    (w.program.span ⟨w.program.fileOf node, w.program.range node⟩) tag) ∈ s.graph.elements
  filed     : s.store.DocumentOf (w.program.fileOf node) document
  contained : Contained s.graph.elements document range
  named     : ∀ id, s.store.Names id key ↔ id = record
  begun     : s.store.hub? record = some hub
  next      : Linked s.graph.elements .next range hub.id

/-- **No occurrence is lost.** -/
theorem Ended.occurs_once (h : Ended w faults s) :
    (∀ file ∈ walkedFiles w.program, ∀ node symbol,
      w.program.Under (w.program.root file) node → w.program.kind node = .identifier →
      w.program.symbolAt node = some symbol →
      ∃ range document record hub,
        OccursAt w s node (w.program.key symbol) range document record hub) ∧
    ∀ x span tag, Element.vertex x (.range span tag) ∈ s.graph.elements →
      (nextSourcesIn s.graph.elements).count x = 1 := by
  obtain ⟨t, u, hwalked⟩ := h.walked
  have hsettled := h.settled
  have horderly := hwalked.shrinks.orderly hwalked.ready.store
  have hlasts := hwalked.shrinks.lasts.trans hwalked.concludes.lasts
  have hkeyed := hwalked.concludes.keyed horderly.keyed
  obtain ⟨-, -, hconcluded⟩ := hwalked.concludes.concluded horderly.counted
  have hends : u.Concluded s.graph.elements := hconcluded
  refine ⟨fun file hfile node symbol hunder hkind hsymbol => ?_, fun x span tag hx => ?_⟩
  · obtain ⟨id, hnames, hoccurs⟩ :=
      (hwalked.seen file hfile node hunder).occurs symbol hkind hsymbol
    have hnamed := hlasts.names hnames
    obtain ⟨x, tag, v, hx, ⟨document, hdocument, hholds⟩, hv, hnext⟩ := hlasts.occurs hoccurs
    refine ⟨x, document, id, v, ⟨_, hx⟩, hdocument, hsettled.contained_iff.mp hholds,
      -- Two records never share a key, so the record is the only one.
      fun other => ⟨fun hother => ?_, fun heq => heq ▸ hnamed⟩, hv, hnext⟩
    obtain ⟨r, hr, hkey⟩ := hnamed
    obtain ⟨r', hr', hkey'⟩ := hother
    exact congrArg RecordId.mk (hkeyed.single _ _ r' r hr' hr (hkey'.trans hkey.symm))
  · obtain ⟨known, htagged⟩ := hends.tagged horderly.counted hx
    obtain ⟨a, d, -, -, v, -, hnext⟩ := hsettled.exists_owner htagged
    refine List.count_eq_one_of_mem ?_ (mem_nextSourcesIn.mpr ⟨v.id, hnext⟩)
    rw [hends.nextSourcesIn_eq]
    exact horderly.counted.leading.nodup

/-- The mention of the overriding method occurs under its record. -/
theorem overriding_occurs : ∃ s, Ended overriding (fun _ => none) s ∧
    (∃ range document record hub, OccursAt overriding s ⟨9⟩ (overriding.program.key ⟨3⟩)
      range document record hub) ∧ (nextSourcesIn s.graph.elements).count ⟨18⟩ = 1 := by
  obtain ⟨s, hs, -, -, -, ⟨span, hmention⟩, -⟩ := overriding_ended
  obtain ⟨hoccurs, hnext⟩ := hs.occurs_once
  have hmentioned : ⟨0⟩ ∈ walkedFiles overriding.program ∧
      ⟨9⟩ ∈ overriding.program.children (overriding.program.root ⟨0⟩) ∧
      overriding.program.kind ⟨9⟩ = .identifier ∧ overriding.program.symbolAt ⟨9⟩ = some ⟨3⟩ := by
    decide +kernel
  obtain ⟨hwalked, hchild, hkind, hsymbol⟩ := hmentioned
  exact ⟨s, hs, hoccurs ⟨0⟩ hwalked ⟨9⟩ ⟨3⟩ (.single hchild) hkind hsymbol,
    hnext ⟨18⟩ span _ hmention⟩

end Run

end SymbolGraph
